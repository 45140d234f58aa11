import WireCodec.Codec.Encode
import WireCodec.Proofs.Value.Nesting
import WireCodec.Proofs.Wire.ScalarForm

/-! # Wire trees of messages

The encoding of a message by the rules of the format alone, without buffers:
in the order of the fields, the occurrences that each field contributes.
-/

namespace WireCodec

/-- The key of the occurrences that a step writes. Runs and entries are payloads. -/
def EncodeStep.key (step : EncodeStep) : Key :=
  match step.form with
  | .single | .each => step.tag.key
  | .packed | .mapEntries _ => ⟨step.tag.number, WireType.lengthDelimited.code⟩

variable (set : PlanSet)

/-- A value that is no message, as it stands on the wire. -/
def leafTree (field : String) (type : ValueType) (value : Value) : Except EncodeError WireValue :=
  match type with
  | .scalar type =>
    match value.toScalar? type with
    | some x => .ok (type.wire x)
    | none => .error (.typeMismatch field (.scalar type) value.kind)
  | .enum enum =>
    match value with
    | .enum symbol =>
      match set.enum? enum with
      | none => .error (.danglingReference enum)
      | some table =>
        match table.number? symbol with
        | some number => .ok (ScalarType.wire .int32 number)
        | none => .error (.unknownEnumSymbol field enum symbol)
    | _ => .error (.typeMismatch field (.symbolOf enum) value.kind)
  | .message name => .error (.typeMismatch field (.messageOf name) value.kind)

mutual

/-- The occurrences that a message consists of. -/
def messageTree (plan : MessagePlan) (record : Record) :
    Except EncodeError (List (Key × WireValue)) :=
  match Record.unknownNames record plan with
  | name :: _ => .error (.unknownField plan.name name)
  | [] => stepTrees plan record plan.steps
termination_by (sizeOf record, plan.steps.length + 1)

/-- The occurrences of the fields that steps are about. -/
def stepTrees (plan : MessagePlan) (record : Record) :
    List EncodeStep → Except EncodeError (List (Key × WireValue))
  | [] => .ok []
  | step :: rest => do
    let own ←
      match plan.fields[step.field]? with
      | none => .error (.danglingReference plan.name)
      | some field =>
        match _found : Record.value? record field.name with
        | none => .ok []
        | some value => fieldTrees field step.form value
    let others ← stepTrees plan record rest
    return own.map (step.key, ·) ++ others
termination_by steps => (sizeOf record, steps.length)
decreasing_by
  · exact Prod.Lex.right _ (Nat.lt_succ_self _)
  · exact Prod.Lex.left _ _ (Sorted.sizeOf_of_find? _found)

/-- The values that stand on the wire for a field: one for each occurrence. -/
def fieldTrees (field : FieldPlan) (form : EncodeForm) (value : Value) :
    Except EncodeError (List WireValue) :=
  match form with
  | .single => do return [← valueTree field.name field.type value]
  | .each =>
    match value with
    | .list items => itemTrees field items
    | _ => .error (.typeMismatch field.name .list value.kind)
  | .packed =>
    match value with
    | .list [] => .ok []
    | .list items => do return [.run (← itemTrees field items)]
    | _ => .error (.typeMismatch field.name .list value.kind)
  | .mapEntries entry =>
    match value with
    | .map entries =>
      match set.message? entry with
      | some plan =>
        match plan.fields with
        | keyPlan :: valuePlan :: _ => entryTrees keyPlan valuePlan entries
        | _ => .error (.danglingReference entry)
      | none => .error (.danglingReference entry)
    | _ => .error (.typeMismatch field.name .map value.kind)
termination_by (sizeOf value, 1)

/-- The items of a list, as they stand on the wire. -/
def itemTrees (field : FieldPlan) : List Value → Except EncodeError (List WireValue)
  | [] => .ok []
  | item :: rest => do
    let first ← valueTree field.name field.type item
    return first :: (← itemTrees field rest)
termination_by items => (sizeOf items, 0)

/-- The entries of a map, each as a message of its key and its value. -/
def entryTrees (keyPlan valuePlan : FieldPlan) :
    List (MapKey × Value) → Except EncodeError (List WireValue)
  | [] => .ok []
  | (key, value) :: rest => do
    let first ← leafTree set keyPlan.name keyPlan.type (.ofMapKey key)
    let second ← valueTree valuePlan.name valuePlan.type value
    let others ← entryTrees keyPlan valuePlan rest
    return .message [(⟨1, keyPlan.type.wireType.code⟩, first),
      (⟨2, valuePlan.type.wireType.code⟩, second)] :: others
termination_by entries => (sizeOf entries, 0)

/-- A value, as it stands on the wire. -/
def valueTree (field : String) (type : ValueType) (value : Value) :
    Except EncodeError WireValue :=
  match type, value with
  | .message name, .message fields =>
    match set.message? name with
    | some plan => do return .message (← messageTree plan fields)
    | none => .error (.danglingReference name)
  | type, value => leafTree set field type value
termination_by (sizeOf value, 0)

end

theorem stepTrees_cons (plan : MessagePlan) (record : Record) (step : EncodeStep)
    (rest : List EncodeStep) :
    stepTrees set plan record (step :: rest) = (do
      let own ←
        match plan.fields[step.field]? with
        | none => .error (.danglingReference plan.name)
        | some field =>
          match Record.value? record field.name with
          | none => .ok []
          | some value => fieldTrees set field step.form value
      let others ← stepTrees set plan record rest
      return own.map (step.key, ·) ++ others) := by
  rw [stepTrees]
  cases plan.fields[step.field]? with
  | none => rfl
  | some field =>
      dsimp only
      split
      next hnone => rw [hnone]
      next value hfound => rw [hfound]

end WireCodec
