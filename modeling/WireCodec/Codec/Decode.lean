import WireCodec.Plan.Basic
import WireCodec.Schema.EntryName
import WireCodec.Value.Basic
import WireCodec.Wire.Cursor.Packable

/-! # Decoding

A message is decoded one field occurrence after the other, until the limit or
a zero key. Each occurrence changes the value of its field; what is required
is checked at the end. Nested messages are decoded in place, and as many
levels deep as the nesting limit admits.
-/

namespace WireCodec

/-- The value of a scalar that is read. -/
def Read.value (type : ScalarType) : Read Value := Value.ofScalar type <$> Read.scalar type

variable (set : PlanSet) (nested : MessagePlan → Read Record)

/-- Reads one value, without its key. The answer is `none` for an enum number
that the table does not have. -/
def readValue : ValueType → Read (Option Value)
  | .scalar type => some <$> Read.value type
  | .enum name => do
    let number ← Read.scalar .int32
    match set.enum? name with
    | none => throw (.danglingReference name)
    | some table => return (table.symbol? number).map .enum
  | .message name =>
    match set.message? name with
    | none => throw (.danglingReference name)
    | some plan => (fun record => some (.message record)) <$> Read.delimited (nested plan)

theorem consumes_readValue (type : ValueType) : Read.Consumes (readValue set nested type) := by
  cases type with
  | scalar type => exact ((Read.consumes_scalar type).map _).map _
  | enum name =>
      refine (Read.consumes_scalar .int32).bind fun number => ?_
      split
      · exact (Read.consumes_throw _).steady
      · exact Read.steady_pure _
  | message name =>
      unfold readValue
      dsimp only
      split
      · exact Read.consumes_throw _
      · exact (Read.consumes_delimited _).map _

/-- A message with a singular field set to a value, or removed for `none`. -/
def Record.assign? (record : Record) (name : String) : Option Value → Record
  | some value => Record.assign record name value
  | none => Record.remove record name

/-- A message with a value appended to a list field, if there is one. -/
def Record.appendItem? (record : Record) (name : String) : Option Value → Record
  | some item => Record.appendItem record name item
  | none => record

/-- Reads one value and appends it to a list field. -/
def readItem (field : FieldPlan) (record : Record) : Read Record :=
  Record.appendItem? record field.name <$> readValue set nested field.type

theorem consumes_readItem (field : FieldPlan) (record : Record) :
    Read.Consumes (readItem set nested field record) :=
  (consumes_readValue set nested field.type).map _

/-- Reads an entry message and puts its key and value into a map field. -/
def readEntry (field : FieldPlan) (entry : String) (record : Record) : Read Record :=
  match set.message? entry with
  | none => throw (.danglingReference entry)
  | some plan => do
    let pair ← Read.delimited (nested plan)
    match (Record.value? pair keyField).bind Value.toMapKey? with
    | none => throw (.malformedMapEntry keyField)
    | some key =>
      match Record.value? pair valueField with
      | none => throw (.malformedMapEntry valueField)
      | some value => return Record.putEntry record field.name key value

/-- Reads an occurrence of a field with the given arm, after its key. -/
def readArm (plan : MessagePlan) (found : Key) (arm : DecodeArm) (record : Record) : Read Record :=
  match plan.fields[arm.field]? with
  | none => throw (.danglingReference plan.name)
  | some field =>
    match arm.action with
    | .assign => do
      Read.expect found arm.wireType.code
      Record.assign? record field.name <$> readValue set nested field.type
    | .append => do
      Read.expect found arm.wireType.code
      readItem set nested field record
    | .appendPackable natural =>
      Read.packable found natural.code (readItem set nested field)
        (consumes_readItem set nested field) record
    | .mergeEntry entry => do
      Read.expect found arm.wireType.code
      readEntry set nested field entry record

theorem steady_readArm (plan : MessagePlan) (found : Key) (arm : DecodeArm) (record : Record) :
    Read.Steady (readArm set nested plan found arm record) := by
  unfold readArm
  split
  · exact (Read.consumes_throw _).steady
  · split
    · exact (Read.steady_expect _ _).bind fun _ =>
        (consumes_readValue set nested _).steady.map _
    · exact (Read.steady_expect _ _).bind fun _ => (consumes_readItem set nested _ _).steady
    · exact Read.steady_packable _ _ _ _ _
    · refine (Read.steady_expect _ _).bind fun _ => ?_
      unfold readEntry
      split
      · exact (Read.consumes_throw _).steady
      · refine (Read.consumes_delimited _).steady.bind fun pair => ?_
        split
        · exact (Read.consumes_throw _).steady
        · split
          · exact (Read.consumes_throw _).steady
          · exact Read.steady_pure _

/-- Reads what follows a key: the value of a field, or something to pass over. -/
def readField (plan : MessagePlan) (record : Record) (found : Key) : Read Record :=
  match plan.arm? found.number with
  | none => (fun _ => record) <$> Read.skip found.wireType
  | some arm => readArm set nested plan found arm record

theorem steady_readField (plan : MessagePlan) (record : Record) (found : Key) :
    Read.Steady (readField set nested plan record found) := by
  unfold readField
  split
  · exact (Read.steady_skip _).map _
  · exact steady_readArm set nested plan found _ record

/-- Reads one field occurrence into a message; `none` where the message ends. -/
def readOccurrence (plan : MessagePlan) (record : Record) : Read (Option Record) := do
  match ← Read.key with
  | none => return none
  | some found => some <$> readField set nested plan record found

/-- The error for a message that lacks a required field. -/
def MessagePlan.missingField (plan : MessagePlan) (name : String) : DecodeError :=
  if plan.synthetic then .malformedMapEntry (if name = keyField then keyField else valueField)
  else .missingRequiredField name

/-- The error for the first of some required fields that a message lacks. -/
def MessagePlan.firstMissing? (plan : MessagePlan) (record : Record) :
    List Nat → Option DecodeError
  | [] => none
  | index :: rest =>
    match plan.fields[index]? with
    | none => some (.danglingReference plan.name)
    | some field =>
      if Record.contains record field.name then plan.firstMissing? record rest
      else some (plan.missingField field.name)

/-- A message value, unless a required field is missing. -/
def MessagePlan.complete (plan : MessagePlan) (record : Record) : Read Record :=
  match plan.firstMissing? record plan.required with
  | none => return record
  | some e => throw e

/-- Reads a message, with a reader for the messages nested in it. -/
def readMessageWith (plan : MessagePlan) : Read Record := do
  let record ← Read.iterate (readOccurrence set nested plan)
    (fun record => Read.advances_key (steady_readField set nested plan record)) []
  plan.complete record

/-- Reads a message in which payloads may nest a number of levels deep. -/
def readMessageWithin : Nat → MessagePlan → Read Record
  | 0 => readMessageWith set (fun _ => throw .nestingTooDeep)
  | levels + 1 => readMessageWith set (readMessageWithin levels)

/-- Reads a message up to the limit of the cursor. -/
def readMessage (plan : MessagePlan) : Read Record := fun input cursor =>
  readMessageWithin set (nestingLimit - cursor.depth) plan input cursor

/-- The message value of an encoding by a plan of the set. -/
def PlanSet.decode (plan : MessagePlan) (input : Bytes) : Except DecodeError Record :=
  match readMessage set plan input (.start input) with
  | .ok record _ => .ok record
  | .error e _ => .error e

end WireCodec
