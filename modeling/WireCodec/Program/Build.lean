import WireCodec.Program.Syntax

/-! # The program of plans

The enums and messages of a set of plans become declarations, the steps of a
plan the statements of its encoder, and its arms those of its decoder.
-/

namespace WireCodec

open Program

/-- The native type that holds a scalar. -/
def ScalarType.native : ScalarType → NativeType
  | double => .f64
  | float => .f32
  | int32 | sint32 | sfixed32 => .i32
  | int64 | sint64 | sfixed64 => .i64
  | uint32 | fixed32 => .u32
  | uint64 | fixed64 => .u64
  | bool => .bool
  | string => .string
  | bytes => .bytes

namespace ValueType

/-- The type of the values of a type. -/
def element : ValueType → ElementType
  | scalar type => .native type.native
  | enum name => .named (typeIdentifier name)
  | message name => .named (typeIdentifier name)

/-- The statements that write the value of a variable after its key. -/
def writeStatements (type : ValueType) (number : UInt32) (value : String) (boxed : Bool) :
    List WriteStatement :=
  match type with
  | scalar type => [.key number type.wireType, .scalar type value]
  | enum _ => [.key number .varint, .variant value]
  | message _ => [.message number value boxed]

/-- The function that writes an element of a packed run of values. -/
def packedWriter : ValueType → ElementWriter
  | scalar type => .scalar type
  | _ => .variant

/-- The expression that reads a value. -/
def readExpr : ValueType → ReadExpr
  | scalar type => .scalar type
  | enum name => .variant (typeIdentifier name)
  | message _ => .message

end ValueType

namespace FieldPlan

variable (field : FieldPlan)

/-- The type of a field that is not taken for a map. -/
def plainType : Program.FieldType :=
  match field.cardinality, field.type with
  | .repeated, type => .vec type.element
  | _, .message name => .optionBox (ValueType.message name).element
  | _, type => .option type.element

/-- The type of a field. -/
def declaredType (set : PlanSet) : Program.FieldType :=
  match field.isMapEntry, field.type with
  | true, .message entry =>
    match set.entryFields? entry with
    | some (key, value) => .hashMap key.type.element value.type.element
    | none => field.plainType
  | _, _ => field.plainType

/-- The statement of a step for the field. -/
def encodeStatement (step : EncodeStep) : EncodeStatement :=
  let name := identifier field.name
  let number := step.tag.number
  match step.form with
  | .single => .ifSome name (field.type.writeStatements number "v" true)
  | .each => .forEach name (field.type.writeStatements number "v" false)
  | .packed => .packed number name field.type.packedWriter
  | .mapEntries entry => .forEntries name (typeIdentifier entry) number

/-- The case of an arm for the field. -/
def matchArm (arm : DecodeArm) : MatchArm :=
  let value := field.type.readExpr
  let action : ArmAction :=
    match arm.action with
    | .assign => .assign arm.wireType value
    | .append => .push arm.wireType value
    | .appendPackable natural => .pushPackable natural value
    | .mergeEntry entry => .insert arm.wireType (typeIdentifier entry)
  ⟨arm.number, identifier field.name, action⟩

/-- The field as the key or the value of an entry. -/
def entryMember (name : String) : EntryMember :=
  ⟨field.type.element, field.number, field.type.wireType,
    field.type.writeStatements field.number name false, field.type.readExpr⟩

end FieldPlan

/-- The variants of an enum. -/
def EnumTable.item (table : EnumTable) : EnumItem := ⟨typeIdentifier table.name, table.variants⟩

namespace MessagePlan

variable (plan : MessagePlan)

/-- The declaration of a message. -/
def structItem (set : PlanSet) : StructItem where
  name := typeIdentifier plan.name
  fields := plan.fields.map fun field => (identifier field.name, field.declaredType set)
  encode := plan.steps.filterMap fun step => plan.fields[step.field]?.map (·.encodeStatement step)
  arms := plan.arms.filterMap fun arm => plan.fields[arm.field]?.map (·.matchArm arm)
  required := plan.required.filterMap fun index =>
    plan.fields[index]?.map fun field => (identifier field.name, field.name)

/-- The declaration of the entries of a map. -/
def entryItem (key value : FieldPlan) : EntryItem :=
  ⟨typeIdentifier plan.name, key.entryMember keyField, value.entryMember valueField⟩

/-- The declaration for a plan of either kind. -/
def item? (set : PlanSet) : Option MessageItem :=
  if plan.synthetic then
    match plan.fields with
    | key :: value :: _ => some (.entry (plan.entryItem key value))
    | _ => none
  else some (.struct (plan.structItem set))

end MessagePlan

/-- The program of a set of plans. -/
def PlanSet.program (set : PlanSet) : Program :=
  ⟨set.package, set.enums.map (·.item), set.messages.filterMap (·.item? set)⟩

end WireCodec
