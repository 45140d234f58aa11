import WireCodec.Codec.EncodeError
import WireCodec.Plan.Basic
import WireCodec.Value.Basic
import WireCodec.Wire.BufferPool

/-! # Encoding

A message is encoded by the steps of its plan, in order. The payload of a
nested message, a run or a map entry is written to a buffer from a pool
first, because its length comes before it; the buffer then goes back.
-/

namespace WireCodec

/-- Where encoding writes: the buffer at hand, and the pool for the next ones. -/
structure Output where
  buffer : Buffer
  pool : BufferPool

/-- A write that may fail. -/
abbrev Write := StateT Output (Except EncodeError)

namespace Write

/-- Writes to the buffer at hand. -/
def put (write : Buffer → Buffer) : Write Unit :=
  modify fun output => { output with buffer := write output.buffer }

/-- Writes a payload to a buffer of its own, and delivers its bytes to the
buffer at hand. -/
def throughPool (payload : Write Unit) (deliver : Buffer → Bytes → Buffer) : Write Unit :=
  fun output => do
    let (scratch, pool) := output.pool.acquire
    let ((), inner) ← payload ⟨scratch, pool⟩
    return ((), ⟨deliver output.buffer inner.buffer.bytes, inner.pool.release inner.buffer⟩)

end Write

/-- The names of fields that a message does not have. -/
def Record.unknownNames (record : Record) (plan : MessagePlan) : List String :=
  (record.map (·.1)).filter fun name => (plan.field? name).isNone

theorem Sorted.sizeOf_of_find? {κ α : Type} [BEq κ] [SizeOf κ] [SizeOf α] {key : κ} {value : α}
    {pairs : List (κ × α)} (h : Sorted.find? key pairs = some value) :
    sizeOf value < sizeOf pairs := by
  induction pairs with
  | nil => cases h
  | cons pair rest ih =>
      obtain ⟨other, found⟩ := pair
      unfold Sorted.find? at h
      split at h
      · cases h
        simp +arith
      · have := ih h
        simp only [List.cons.sizeOf_spec]
        omega

variable (set : PlanSet)

/-- Writes a value that is no message, without its key. -/
def writeLeaf (field : String) (type : ValueType) (value : Value) : Write Unit :=
  match type with
  | .scalar type =>
    match value.toScalar? type with
    | some x => Write.put (·.writeScalar type x)
    | none => throw (.typeMismatch field (.scalar type) value.kind)
  | .enum enum =>
    match value with
    | .enum symbol =>
      match set.enum? enum with
      | none => throw (.danglingReference enum)
      | some table =>
        match table.number? symbol with
        | some number => Write.put (·.writeScalar .int32 number)
        | none => throw (.unknownEnumSymbol field enum symbol)
    | _ => throw (.typeMismatch field (.symbolOf enum) value.kind)
  | .message name => throw (.typeMismatch field (.messageOf name) value.kind)

mutual

/-- Writes the fields of a message. -/
def writeMessage (plan : MessagePlan) (record : Record) : Write Unit :=
  match Record.unknownNames record plan with
  | name :: _ => throw (.unknownField plan.name name)
  | [] => writeSteps plan record plan.steps
termination_by (sizeOf record, plan.steps.length + 1)

/-- Writes the fields that steps are about. -/
def writeSteps (plan : MessagePlan) (record : Record) : List EncodeStep → Write Unit
  | [] => pure ()
  | step :: rest => do
    match plan.fields[step.field]? with
    | none => throw (.danglingReference plan.name)
    | some field =>
      match _found : Record.value? record field.name with
      | none => pure ()
      | some value => writeField field step value
    writeSteps plan record rest
termination_by steps => (sizeOf record, steps.length)
decreasing_by
  · exact Prod.Lex.right _ (Nat.lt_succ_self _)
  · exact Prod.Lex.left _ _ (Sorted.sizeOf_of_find? _found)

/-- Writes a field in the form of its step. -/
def writeField (field : FieldPlan) (step : EncodeStep) (value : Value) : Write Unit :=
  match step.form with
  | .single => do
    Write.put (·.writeKey step.tag.key)
    writeValue field.name field.type value
  | .each =>
    match value with
    | .list items => writeEach field step items
    | _ => throw (.typeMismatch field.name .list value.kind)
  | .packed =>
    match value with
    | .list [] => pure ()
    | .list items =>
      Write.throughPool (writeItems field items)
        (fun buffer run => buffer.writeDelimitedField step.tag.number run)
    | _ => throw (.typeMismatch field.name .list value.kind)
  | .mapEntries entry =>
    match value with
    | .map entries =>
      match set.message? entry with
      | some plan =>
        match plan.fields with
        | keyPlan :: valuePlan :: _ => writeEntries keyPlan valuePlan step entries
        | _ => throw (.danglingReference entry)
      | none => throw (.danglingReference entry)
    | _ => throw (.typeMismatch field.name .map value.kind)
termination_by (sizeOf value, 1)

/-- Writes an occurrence for each element of a list. -/
def writeEach (field : FieldPlan) (step : EncodeStep) : List Value → Write Unit
  | [] => pure ()
  | item :: rest => do
    Write.put (·.writeKey step.tag.key)
    writeValue field.name field.type item
    writeEach field step rest
termination_by items => (sizeOf items, 0)

/-- Writes the elements of a list, without keys. -/
def writeItems (field : FieldPlan) : List Value → Write Unit
  | [] => pure ()
  | item :: rest => do
    writeValue field.name field.type item
    writeItems field rest
termination_by items => (sizeOf items, 0)

/-- Writes an occurrence for each entry of a map: a message of a key under
the number 1 and a value under the number 2. -/
def writeEntries (keyPlan valuePlan : FieldPlan) (step : EncodeStep) :
    List (MapKey × Value) → Write Unit
  | [] => pure ()
  | (key, value) :: rest => do
    Write.throughPool
      (do
        Write.put (·.writeKey ⟨1, keyPlan.type.wireType.code⟩)
        writeLeaf set keyPlan.name keyPlan.type (.ofMapKey key)
        Write.put (·.writeKey ⟨2, valuePlan.type.wireType.code⟩)
        writeValue valuePlan.name valuePlan.type value)
      (fun buffer payload => buffer.writeDelimitedField step.tag.number payload)
    writeEntries keyPlan valuePlan step rest
termination_by entries => (sizeOf entries, 0)

/-- Writes a value, without its key. -/
def writeValue (field : String) (type : ValueType) (value : Value) : Write Unit :=
  match type, value with
  | .message name, .message fields =>
    match set.message? name with
    | some plan =>
      Write.throughPool (writeMessage plan fields)
        (fun buffer payload => buffer.writeDelimited payload)
    | none => throw (.danglingReference name)
  | type, value => writeLeaf set field type value
termination_by (sizeOf value, 0)

end

/-- The encoding of a message value by a plan of the set. -/
def PlanSet.encode (plan : MessagePlan) (record : Record) : Except EncodeError Bytes := do
  let (buffer, pool) := BufferPool.empty.acquire
  let ((), output) ← writeMessage set plan record ⟨buffer, pool⟩
  return output.buffer.bytes

end WireCodec
