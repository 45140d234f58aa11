import WireCodec.Program.Runtime
import WireCodec.Program.Syntax
import WireCodec.Value.Basic

/-! # What programs do

The encoder of a struct is run on the values of its fields, and its decoder
reads them. The messages among these values are of a type left open: encoders
and decoders use nothing of them but their own encoders and decoders.
-/

namespace WireCodec.Program

variable {μ : Type}

/-! ## Values -/

/-- A single value: of a native type, a variant of an enum, or a message. -/
inductive Datum (μ : Type) where
  | native (value : Value)
  | variant (enum variant : String)
  | message (message : μ)

/-- The value of a field. A map has its entries in the order in which it goes
through them. -/
inductive Slot (μ : Type) where
  | option (value : Option (Datum μ))
  | vec (items : List (Datum μ))
  | hashMap (entries : List (MapKey × Datum μ))

/-- A struct: the values of its fields, by their identifiers. -/
abbrev Fields (μ : Type) := List (String × Slot μ)

namespace Fields

/-- The value of a field. -/
def slot? (fields : Fields μ) (name : String) : Option (Slot μ) :=
  (fields.find? (·.1 == name)).map (·.2)

/-- Changes the value of a field. -/
def modify (fields : Fields μ) (name : String) (change : Slot μ → Slot μ) : Fields μ :=
  fields.map fun field => if field.1 = name then (field.1, change field.2) else field

end Fields

namespace Slot

/-- Appends an element to a list, if there is one. -/
def push? (slot : Slot μ) (item : Option (Datum μ)) : Slot μ :=
  match slot, item with
  | vec items, some item => vec (items ++ [item])
  | slot, _ => slot

/-- Puts an entry into a map in place of an entry of that key. -/
def insert (slot : Slot μ) (key value : Datum μ) : Slot μ :=
  match slot, key with
  | hashMap entries, .native key =>
    match key.toMapKey? with
    | some key => hashMap (Sorted.insert key value entries)
    | none => slot
  | slot, _ => slot

/-- Whether there is no value. -/
def isNone : Slot μ → Bool
  | option none => true
  | _ => false

end Slot

/-- The value of a field to begin with. -/
def FieldType.default : FieldType → Slot μ
  | option _ | optionBox _ => .option none
  | vec _ => .vec []
  | hashMap _ _ => .hashMap []

/-- The struct to begin with. -/
def StructItem.default (item : StructItem) : Fields μ :=
  item.fields.map fun (name, type) => (name, type.default)

/-! ## Declarations -/

/-- The variant of a number. -/
def EnumItem.variant? (item : EnumItem) (number : Int32) : Option String :=
  (item.variants.find? (·.1 == number.toInt)).map (·.2)

/-- The number of a variant. -/
def EnumItem.number? (item : EnumItem) (variant : String) : Option Int32 :=
  (item.variants.find? (·.2 == variant)).map fun found => Int32.ofInt found.1

/-- The entries that a message item declares under a name. -/
def MessageItem.entryItem? (name : String) : MessageItem → Option EntryItem
  | entry item => if item.name = name then some item else none
  | struct _ => none

variable (program : Program)

/-- The enum of a name. -/
def enum? (name : String) : Option EnumItem := program.enums.find? (·.name == name)

/-- The entries of a name. -/
def entryItem? (name : String) : Option EntryItem := program.messages.findSome? (·.entryItem? name)

/-! ## Encoders

Nothing is written for a value of another type than a statement is made for. -/

/-- Writes a scalar without its key. -/
def writeScalar (type : ScalarType) (buffer : Buffer) : Datum μ → Buffer
  | .native value =>
    match value.toScalar? type with
    | some x => buffer.writeScalar type x
    | none => buffer
  | _ => buffer

/-- Writes the number of a variant without its key. -/
def writeVariant (buffer : Buffer) : Datum μ → Buffer
  | .variant enum variant =>
    match (program.enum? enum).bind (·.number? variant) with
    | some number => buffer.writeScalar .int32 number
    | none => buffer
  | _ => buffer

/-- Writes an element of a packed run. -/
def ElementWriter.run (buffer : Buffer) (item : Datum μ) : ElementWriter → Buffer
  | scalar type => writeScalar type buffer item
  | variant => program.writeVariant buffer item

variable (encode : μ → Buffer → Buffer)

/-- Runs a statement with the values of some variables. -/
def WriteStatement.run (values : List (String × Datum μ)) (buffer : Buffer) :
    WriteStatement → Buffer
  | key number type => buffer.writeKey ⟨number, type.code⟩
  | scalar type value =>
    match values.lookup value with
    | some datum => writeScalar type buffer datum
    | none => buffer
  | variant value =>
    match values.lookup value with
    | some datum => program.writeVariant buffer datum
    | none => buffer
  | message number value _ =>
    match values.lookup value with
    | some (.message inner) => buffer.writePayloadField number (encode inner)
    | _ => buffer

/-- Runs statements one after the other. -/
def runAll (values : List (String × Datum μ)) (body : List WriteStatement) (buffer : Buffer) :
    Buffer :=
  body.foldl (fun buffer statement => statement.run program encode values buffer) buffer

/-- Encodes an entry by the code of its type. -/
def EntryItem.encodeEntry (item : EntryItem) (entry : MapKey × Datum μ) (buffer : Buffer) :
    Buffer :=
  program.runAll encode [(keyField, .native (.ofMapKey entry.1)), (valueField, entry.2)]
    (item.key.write ++ item.value.write) buffer

/-- Runs a statement on the fields of a struct. -/
def EncodeStatement.run (fields : Fields μ) (buffer : Buffer) : EncodeStatement → Buffer
  | ifSome field body =>
    match fields.slot? field with
    | some (.option (some value)) => program.runAll encode [("v", value)] body buffer
    | _ => buffer
  | forEach field body =>
    match fields.slot? field with
    | some (.vec items) =>
      items.foldl (fun buffer item => program.runAll encode [("v", item)] body buffer) buffer
    | _ => buffer
  | packed number field element =>
    match fields.slot? field with
    | some (.vec items) =>
      buffer.writeRunField number items fun run item => element.run program run item
    | _ => buffer
  | forEntries field entry number =>
    match fields.slot? field, program.entryItem? entry with
    | some (.hashMap entries), some item =>
      entries.foldl
        (fun buffer entry =>
          buffer.writePayloadField number (item.encodeEntry program encode entry))
        buffer
    | _, _ => buffer

/-- Encodes a struct, with an encoder for the messages in it. -/
def StructItem.encodeTo (item : StructItem) (fields : Fields μ) (buffer : Buffer) : Buffer :=
  item.encode.foldl (fun buffer statement => statement.run program encode fields buffer) buffer

/-! ## Decoders -/

variable (decode : String → Read μ)

/-- Reads a value of a type. The answer is `none` for a number without a variant. -/
def read (type : ElementType) : ReadExpr → Read (Option (Datum μ))
  | .scalar type => (fun x => some (.native (.ofScalar type x))) <$> Read.scalar type
  | .variant enum =>
    (fun number => ((program.enum? enum).bind (·.variant? number)).map (.variant enum)) <$>
      Read.scalar .int32
  | .message =>
    match type with
    | .named name => (fun message => some (.message message)) <$> Read.delimited (decode name)
    | .native native => throw (.danglingReference native.text)

theorem consumes_read (type : ElementType) (expr : ReadExpr) :
    Read.Consumes (program.read decode type expr) := by
  cases expr with
  | scalar type => exact (Read.consumes_scalar type).map _
  | variant enum => exact (Read.consumes_scalar .int32).map _
  | message =>
      cases type with
      | native type => exact Read.consumes_throw _
      | named name => exact (Read.consumes_delimited _).map _

/-- The type of the single values of a field. -/
def FieldType.element : FieldType → ElementType
  | option element => element
  | optionBox element => element
  | vec element => element
  | hashMap _ value => value

/-- The case of a member of an entry. -/
def EntryMember.reader {σ : Type} (member : EntryMember) (set : σ → Option (Datum μ) → σ) :
    FieldReader σ :=
  .single member.number member.wireType (program.read decode member.type member.value)
    (program.consumes_read decode _ _).steady set

/-- Decodes an entry by the code of its type. Both members have to be there. -/
def EntryItem.decodeFrom (item : EntryItem) : Read (Datum μ × Datum μ) := do
  let parts ← readCases
    [item.key.reader program decode fun parts key => (key, parts.2),
      item.value.reader program decode fun parts value => (parts.1, value)]
    ((none, none) : Option (Datum μ) × Option (Datum μ))
  match parts with
  | (none, _) => throw (.malformedMapEntry keyField)
  | (some _, none) => throw (.malformedMapEntry valueField)
  | (some key, some value) => return (key, value)

/-- The case of an arm for a field whose single values are of a type. -/
def MatchArm.reader (arm : MatchArm) (type : ElementType) : FieldReader (Fields μ) :=
  match arm.action with
  | .assign wireType value =>
    .single arm.number wireType (program.read decode type value)
      (program.consumes_read decode _ _).steady
      fun fields value => fields.modify arm.field fun _ => .option value
  | .push wireType value =>
    .single arm.number wireType (program.read decode type value)
      (program.consumes_read decode _ _).steady
      fun fields value => fields.modify arm.field (·.push? value)
  | .pushPackable natural element =>
    .packable arm.number natural (program.read decode type element)
      (program.consumes_read decode _ _)
      fun fields item => fields.modify arm.field (·.push? item)
  | .insert wireType entry =>
    .single arm.number wireType
      (Read.delimited
        (match program.entryItem? entry with
        | some item => item.decodeFrom program decode
        | none => throw (.danglingReference entry)))
      (Read.consumes_delimited _).steady
      fun fields pair => fields.modify arm.field (·.insert pair.1 pair.2)

/-- The type of a field. -/
def StructItem.type? (item : StructItem) (name : String) : Option FieldType :=
  (item.fields.find? (·.1 == name)).map (·.2)

/-- The cases of the arms of a struct. -/
def StructItem.readers (item : StructItem) : List (FieldReader (Fields μ)) :=
  item.arms.filterMap fun arm =>
    (item.type? arm.field).map fun type => arm.reader program decode type.element

/-- Decodes a struct, with decoders for the messages in it by their types. -/
def StructItem.decodeFrom (item : StructItem) : Read (Fields μ) := do
  let fields ← readCases (item.readers program decode) item.default
  match item.required.find? fun field => (fields.slot? field.1).all (·.isNone) with
  | some field => throw (.missingRequiredField field.2)
  | none => return fields

end WireCodec.Program
