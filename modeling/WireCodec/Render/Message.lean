import WireCodec.Render.Enum

/-! # Messages in generated code

A message is a type with a field for each field of the schema. It is encoded
by a statement for each step of its plan, and decoded by a loop over keys with
a case for each arm.
-/

namespace WireCodec

namespace ValueType

/-- The statements that write a value, given by reference, after its key. -/
def writeCode (type : ValueType) (number : UInt32) (value : String) (boxed : Bool) : List Code :=
  match type with
  | scalar type =>
    let argument :=
      match type with
      | .string | .bytes => value
      | _ => "*" ++ value
    [.line s!"buf.write_tag({number}, {type.wireType.constantText});",
      .line s!"buf.write_{type.name}({argument});"]
  | enum _ =>
    [.line s!"buf.write_tag({number}, protowire::wire::VARINT);",
      .line s!"buf.write_int32({value}.as_i32());"]
  | message _ =>
    let target := if boxed then "&**" ++ value else value
    [.line s!"protowire::encode_message_field({number}, {target}, buf);"]

/-- The function that writes an element of a packed run. -/
def elementWriter : ValueType → String
  | scalar type => s!"|b, v| b.write_{type.name}(*v)"
  | _ => "|b, v| b.write_int32(v.as_i32())"

/-- The expression that reads a value. -/
def readText (type : ValueType) (reader : String) : String :=
  match type with
  | scalar type => s!"{reader}.read_{type.name}()?"
  | enum name => s!"{typeIdentifier name}::from_i32({reader}.read_int32()?)"
  | message _ => s!"protowire::decode_message_field({reader})?"

end ValueType

/-- The statement that refuses another wire type. -/
def expectCode (type : WireType) : Code :=
  .line s!"protowire::expect_wire_type(number, wire_type, {type.constantText})?;"

/-- The loop over the keys of a message with its cases. -/
def keyLoopCode (arms : List Code) : Code :=
  .braces "while let Some((number, wire_type)) = reader.read_tag()? "
    [.braces "match number " (arms ++ [.line "_ => reader.skip(wire_type)?,"])]

/-- The head of a function that decodes. -/
def decodeHead : String :=
  "fn decode_from(reader: &mut protowire::Reader<'_>) -> " ++
    "Result<Self, protowire::DecodeError> "

namespace MessagePlan

variable (plan : MessagePlan)

/-- The declaration of a message. -/
def typeCode (set : PlanSet) (mode : DeriveMode) : List Code :=
  let head := s!"pub struct {typeIdentifier plan.name} "
  let body :=
    match plan.fields with
    | [] => .line (head ++ "\x7b\x7d")
    | fields =>
      .braces head
        (fields.map fun field => .line s!"pub {identifier field.name}: {field.typeText set},")
  .line "#[derive(Debug, Clone, PartialEq, Default)]" :: mode.code ++ [body]

/-- The statement of a step. -/
def stepCode (step : EncodeStep) : List Code :=
  match plan.fields[step.field]? with
  | none => []
  | some field =>
    let name := identifier field.name
    let number := step.tag.number
    match step.form with
    | .single =>
      [.braces s!"if let Some(v) = &self.{name} " (field.type.writeCode number "v" true)]
    | .each => [.braces s!"for v in &self.{name} " (field.type.writeCode number "v" false)]
    | .packed =>
      [.line s!"protowire::encode_packed({number}, &self.{name}, buf, {field.type.elementWriter});"]
    | .mapEntries entry =>
      [.braces s!"for (key, value) in &self.{name} "
        [.line "let mut entry = protowire::Buffer::new();",
          .line s!"{typeIdentifier entry}::encode_entry(key, value, &mut entry);",
          .line s!"buf.write_delimited_field({number}, entry.as_bytes());"]]

/-- The function that encodes a message. -/
def encodeCode : Code :=
  let buffer := if plan.steps.isEmpty then "_buf" else "buf"
  .braces s!"fn encode_to(&self, {buffer}: &mut protowire::Buffer) "
    (plan.steps.flatMap plan.stepCode)

/-- The case of an arm. -/
def armCode (arm : DecodeArm) : List Code :=
  match plan.fields[arm.field]? with
  | none => []
  | some field =>
    let name := identifier field.name
    let number := arm.number
    let value := field.type.readText "reader"
    let case (statements : List Code) : List Code :=
      [.braces s!"{number} => " (expectCode arm.wireType :: statements)]
    match arm.action with
    | .assign =>
      match field.type with
      | .enum _ => case [.line s!"msg.{name} = {value};"]
      | .message _ => case [.line s!"msg.{name} = Some(Box::new({value}));"]
      | .scalar _ => case [.line s!"msg.{name} = Some({value});"]
    | .append => case [.line s!"msg.{name}.push({value});"]
    | .appendPackable natural =>
      let element := field.type.readText "r"
      let push :=
        match field.type with
        | .enum _ => .braces s!"if let Some(v) = {element} " [.line s!"msg.{name}.push(v);"]
        | _ => .line s!"msg.{name}.push({element});"
      [.block (s!"{number} => protowire::decode_packable(reader, number, wire_type, " ++
          s!"{natural.constantText}, |r| ") [push, .line "Ok(())"] ")?,"]
    | .mergeEntry entry =>
      case
        [.line (s!"let entry = reader.read_length_delimited({typeIdentifier entry}" ++
            "::decode_from)?;"),
          .line s!"msg.{name}.insert(entry.key, entry.value);"]

/-- The statement that refuses a message without a required field. -/
def requiredCode (index : Nat) : List Code :=
  match plan.fields[index]? with
  | none => []
  | some field =>
    [.braces s!"if msg.{identifier field.name}.is_none() "
      [.line (s!"return Err(protowire::DecodeError::MissingRequiredField(\"{field.name}\"" ++
          ".to_string()));")]]

/-- The function that decodes a message. -/
def decodeCode : Code :=
  let start :=
    if plan.fields.isEmpty then "let msg = Self::default();" else "let mut msg = Self::default();"
  .braces decodeHead
    (.line start :: keyLoopCode (plan.arms.flatMap plan.armCode) ::
      plan.required.flatMap plan.requiredCode ++ [.line "Ok(msg)"])

/-- The code of a message that is declared. -/
def code (set : PlanSet) (mode : DeriveMode) : List Code :=
  plan.typeCode set mode ++
    [.blank,
      .braces s!"impl protowire::Message for {typeIdentifier plan.name} "
        [plan.encodeCode, .blank, plan.decodeCode]]

end MessagePlan

end WireCodec
