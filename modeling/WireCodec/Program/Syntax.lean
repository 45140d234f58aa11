import WireCodec.Render.Source

/-! # Programs

Generated code as a tree: the types of values, the statements of an encoder,
the arms of a decoder, and the declarations that hold them. Each construct has
its text.
-/

namespace WireCodec

namespace Program

/-! ## Types -/

/-- A type of the language or of its library. -/
inductive NativeType where
  | f64
  | f32
  | i32
  | i64
  | u32
  | u64
  | bool
  | string
  | bytes
deriving DecidableEq, Repr

def NativeType.text : NativeType → String
  | f64 => "f64"
  | f32 => "f32"
  | i32 => "i32"
  | i64 => "i64"
  | u32 => "u32"
  | u64 => "u64"
  | bool => "bool"
  | string => "String"
  | bytes => "Vec<u8>"

/-- The type of a single value. -/
inductive ElementType where
  | native (type : NativeType)
  | named (identifier : String)
deriving DecidableEq, Repr

def ElementType.text : ElementType → String
  | native type => type.text
  | named identifier => identifier

/-- The type of a field. -/
inductive FieldType where
  | option (element : ElementType)
  | optionBox (element : ElementType)
  | vec (element : ElementType)
  | hashMap (key value : ElementType)
deriving DecidableEq, Repr

def FieldType.text : FieldType → String
  | option element => s!"Option<{element.text}>"
  | optionBox element => s!"Option<Box<{element.text}>>"
  | vec element => s!"Vec<{element.text}>"
  | hashMap key value => s!"::std::collections::HashMap<{key.text}, {value.text}>"

/-! ## Encoders -/

/-- A statement that writes to the buffer; values are given by their variables. -/
inductive WriteStatement where
  | key (number : UInt32) (type : WireType)
  | scalar (type : ScalarType) (value : String)
  /-- The number of a variant. -/
  | variant (value : String)
  /-- A message after its key; a boxed one is taken out of its box. -/
  | message (number : UInt32) (value : String) (boxed : Bool)
deriving DecidableEq, Repr

def WriteStatement.code : WriteStatement → Code
  | key number type => .line s!"buf.write_tag({number}, {type.constantText});"
  | scalar type value =>
    let argument :=
      match type with
      | .string | .bytes => value
      | _ => "*" ++ value
    .line s!"buf.write_{type.name}({argument});"
  | variant value => .line s!"buf.write_int32({value}.as_i32());"
  | message number value boxed =>
    let target := if boxed then "&**" ++ value else value
    .line s!"protowire::encode_message_field({number}, {target}, buf);"

/-- The function that writes an element of a packed run. -/
inductive ElementWriter where
  | scalar (type : ScalarType)
  | variant
deriving DecidableEq, Repr

def ElementWriter.text : ElementWriter → String
  | scalar type => s!"|b, v| b.write_{type.name}(*v)"
  | variant => "|b, v| b.write_int32(v.as_i32())"

/-- A statement of an encoder, about one field of the message. -/
inductive EncodeStatement where
  | ifSome (field : String) (body : List WriteStatement)
  | forEach (field : String) (body : List WriteStatement)
  | packed (number : UInt32) (field : String) (element : ElementWriter)
  /-- Each entry is encoded to a buffer of its own by the code of its type. -/
  | forEntries (field : String) (entry : String) (number : UInt32)
deriving DecidableEq, Repr

def EncodeStatement.code : EncodeStatement → Code
  | ifSome field body => .braces s!"if let Some(v) = &self.{field} " (body.map (·.code))
  | forEach field body => .braces s!"for v in &self.{field} " (body.map (·.code))
  | packed number field element =>
    .line s!"protowire::encode_packed({number}, &self.{field}, buf, {element.text});"
  | forEntries field entry number =>
    .braces s!"for (key, value) in &self.{field} "
      [.line "let mut entry = protowire::Buffer::new();",
        .line s!"{entry}::encode_entry(key, value, &mut entry);",
        .line s!"buf.write_delimited_field({number}, entry.as_bytes());"]

/-! ## Decoders -/

/-- An expression that reads a value. -/
inductive ReadExpr where
  | scalar (type : ScalarType)
  /-- The variant of the number that is read, if there is one. -/
  | variant (enum : String)
  | message
deriving DecidableEq, Repr

def ReadExpr.text (reader : String) : ReadExpr → String
  | scalar type => s!"{reader}.read_{type.name}()?"
  | variant enum => s!"{enum}::from_i32({reader}.read_int32()?)"
  | message => s!"protowire::decode_message_field({reader})?"

/-- What an arm does with an occurrence of its field. -/
inductive ArmAction where
  | assign (type : WireType) (value : ReadExpr)
  | push (type : WireType) (value : ReadExpr)
  | pushPackable (natural : WireType) (element : ReadExpr)
  | insert (type : WireType) (entry : String)
deriving DecidableEq, Repr

/-- The case of a field number. -/
structure MatchArm where
  number : UInt32
  field : String
  action : ArmAction
deriving DecidableEq, Repr

def MatchArm.code (arm : MatchArm) : Code :=
  let case (type : WireType) (statements : List Code) : Code :=
    .braces s!"{arm.number} => " (expectCode type :: statements)
  match arm.action with
  | .assign type value =>
    let text := value.text "reader"
    -- a number may have no variant, so a variant is optional by itself
    let statement :=
      match value with
      | .variant _ => s!"msg.{arm.field} = {text};"
      | .message => s!"msg.{arm.field} = Some(Box::new({text}));"
      | .scalar _ => s!"msg.{arm.field} = Some({text});"
    case type [.line statement]
  | .push type value =>
    let text := value.text "reader"
    case type [.line s!"msg.{arm.field}.push({text});"]
  | .pushPackable natural element =>
    let value := element.text "r"
    let push :=
      match element with
      | .variant _ => .braces s!"if let Some(v) = {value} " [.line s!"msg.{arm.field}.push(v);"]
      | _ => .line s!"msg.{arm.field}.push({value});"
    .block (s!"{arm.number} => protowire::decode_packable(reader, number, wire_type, " ++
      s!"{natural.constantText}, |r| ") [push, .line "Ok(())"] ")?,"
  | .insert type entry =>
    case type
      [.line (s!"let entry = reader.read_length_delimited({entry}" ++ "::decode_from)?;"),
        .line s!"msg.{arm.field}.insert(entry.key, entry.value);"]

/-! ## Declarations -/

/-- An enum with the number of each variant. -/
structure EnumItem where
  name : String
  variants : List (Int × String)
deriving DecidableEq, Repr

namespace EnumItem

variable (item : EnumItem)

def typeCode (mode : DeriveMode) : List Code :=
  .line "#[derive(Debug, Clone, Copy, PartialEq, Eq, Hash)]" :: mode.code ++
    [.braces s!"pub enum {item.name} " (item.variants.map fun (_, variant) => .line s!"{variant},")]

def fromNumberCode : Code :=
  let arms := item.variants.map fun (number, variant) =>
    Code.line s!"{number} => Some({item.name}::{variant}),"
  .braces "pub fn from_i32(value: i32) -> Option<Self> "
    [.braces "match value " (arms ++ [.line "_ => None,"])]

def toNumberCode : Code :=
  let body :=
    match item.variants with
    | [] => .line "match self \x7b\x7d"
    | variants =>
      .braces "match self "
        (variants.map fun (number, variant) => .line s!"{item.name}::{variant} => {number},")
  .braces "pub fn as_i32(self) -> i32 " [body]

def code (mode : DeriveMode) : List Code :=
  item.typeCode mode ++
    [.blank, .braces s!"impl {item.name} " [item.fromNumberCode, .blank, item.toNumberCode]]

end EnumItem

/-- A message with its encoder and its decoder. -/
structure StructItem where
  name : String
  fields : List (String × FieldType)
  encode : List EncodeStatement
  arms : List MatchArm
  /-- The fields that have to be there, and the names under which they are missed. -/
  required : List (String × String)
deriving DecidableEq, Repr

namespace StructItem

variable (item : StructItem)

def typeCode (mode : DeriveMode) : List Code :=
  let head := s!"pub struct {item.name} "
  let body :=
    match item.fields with
    | [] => .line (head ++ "\x7b\x7d")
    | fields => .braces head (fields.map fun (name, type) => .line s!"pub {name}: {type.text},")
  .line "#[derive(Debug, Clone, PartialEq, Default)]" :: mode.code ++ [body]

def encodeCode : Code :=
  let buffer := if item.encode.isEmpty then "_buf" else "buf"
  .braces s!"fn encode_to(&self, {buffer}: &mut protowire::Buffer) " (item.encode.map (·.code))

def requiredCode (field : String × String) : Code :=
  .braces s!"if msg.{field.1}.is_none() "
    [.line (s!"return Err(protowire::DecodeError::MissingRequiredField(\"{field.2}\"" ++
        ".to_string()));")]

def decodeCode : Code :=
  let start :=
    if item.fields.isEmpty then "let msg = Self::default();" else "let mut msg = Self::default();"
  .braces decodeHead
    (.line start :: keyLoopCode (item.arms.map (·.code)) :: item.required.map requiredCode ++
      [.line "Ok(msg)"])

def code (mode : DeriveMode) : List Code :=
  item.typeCode mode ++
    [.blank,
      .braces s!"impl protowire::Message for {item.name} "
        [item.encodeCode, .blank, item.decodeCode]]

end StructItem

/-- The key or the value of an entry. -/
structure EntryMember where
  type : ElementType
  number : UInt32
  wireType : WireType
  write : List WriteStatement
  value : ReadExpr
deriving DecidableEq, Repr

def EntryMember.armCode (name : String) (member : EntryMember) : Code :=
  let text := member.value.text "reader"
  let statement :=
    match member.value with
    | .variant _ => s!"{name} = {text};"
    | _ => s!"{name} = Some({text});"
  .braces s!"{member.number} => " [expectCode member.wireType, .line statement]

/-- The member of a name of an entry that is complete, or the error that it is not. -/
def memberText (name : String) : String :=
  s!"{name}: {name}.ok_or(protowire::DecodeError::MalformedMapEntry " ++
    s!"\x7b missing: \"{name}\" \x7d)?,"

/-- The entries of a map, each of a key and a value, with their own code. -/
structure EntryItem where
  name : String
  key : EntryMember
  value : EntryMember
deriving DecidableEq, Repr

def EntryItem.code (item : EntryItem) : List Code :=
  let key := item.key
  let value := item.value
  [.braces s!"struct {item.name} "
      [.line s!"{keyField}: {key.type.text},", .line s!"{valueField}: {value.type.text},"],
    .blank,
    .braces s!"impl {item.name} "
      [.braces (s!"fn encode_entry(key: &{key.type.text}, value: &{value.type.text}, " ++
          "buf: &mut protowire::Buffer) ") ((key.write ++ value.write).map (·.code)),
        .blank,
        .braces decodeHead
          [.line s!"let mut key: Option<{key.type.text}> = None;",
            .line s!"let mut value: Option<{value.type.text}> = None;",
            keyLoopCode [key.armCode keyField, value.armCode valueField],
            .block "Ok(Self "
              [.line (memberText keyField), .line (memberText valueField)] ")"]]]

/-- The code that is generated for a message. -/
inductive MessageItem where
  | struct (item : StructItem)
  | entry (item : EntryItem)
deriving DecidableEq, Repr

def MessageItem.code (mode : DeriveMode) : MessageItem → List Code
  | struct item => item.code mode
  | entry item => item.code

end Program

/-- Generated code: enums, then messages, with the package that they are for. -/
structure Program where
  package : Option String
  enums : List Program.EnumItem
  messages : List Program.MessageItem
deriving DecidableEq, Repr

/-- The code of a program. -/
def Program.code (program : Program) (mode : DeriveMode) : List Code :=
  (.line "// Code generated by protowirec. DO NOT EDIT." ::
      program.package.toList.map fun package => .line s!"// package: {package}") ++
    (program.enums.flatMap fun item => .blank :: item.code mode) ++
      program.messages.flatMap fun item => .blank :: item.code mode

/-- The text of a program. -/
def Program.text (program : Program) (mode : DeriveMode) : String :=
  Code.printAll 0 (program.code mode)

end WireCodec
