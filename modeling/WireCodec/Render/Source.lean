import WireCodec.Render.Message

/-! # Generated source text

The source text for a set of plans: its enums, then its messages, in order,
with a blank line before each. The entries of a map are a type of their own
that the code of the map field reads and writes. Both parts of an entry have
to be there.
-/

namespace WireCodec

/-- The name under which generated code keeps a part of an entry. -/
structure EntryPart where
  name : String
  field : FieldPlan

namespace EntryPart

variable (part : EntryPart)

/-- The type of the part. -/
def typeText : String := part.field.type.typeText

/-- The case that reads the part. -/
def readCode : Code :=
  let value := part.field.type.readText "reader"
  let statement :=
    match part.field.type with
    | .enum _ => s!"{part.name} = {value};"
    | _ => s!"{part.name} = Some({value});"
  .braces s!"{part.field.number} => "
    [expectCode part.field.type.wireType, .line statement]

/-- The member of an entry that is complete, or the error that it is not. -/
def memberText : String :=
  s!"{part.name}: {part.name}.ok_or(protowire::DecodeError::MalformedMapEntry " ++
    s!"\x7b missing: \"{part.name}\" \x7d)?,"

end EntryPart

/-- The code of an entry with a key and a value. -/
def entryCode (name : String) (key value : EntryPart) : List Code :=
  [.braces s!"struct {name} "
      [.line s!"{key.name}: {key.typeText},", .line s!"{value.name}: {value.typeText},"],
    .blank,
    .braces s!"impl {name} "
      [.braces (s!"fn encode_entry(key: &{key.typeText}, value: &{value.typeText}, " ++
          "buf: &mut protowire::Buffer) ")
          (key.field.type.writeCode key.field.number key.name false ++
            value.field.type.writeCode value.field.number value.name false),
        .blank,
        .braces decodeHead
          [.line s!"let mut key: Option<{key.typeText}> = None;",
            .line s!"let mut value: Option<{value.typeText}> = None;",
            keyLoopCode [key.readCode, value.readCode],
            .block "Ok(Self " [.line key.memberText, .line value.memberText] ")"]]]

/-- The code of the message that was made for the entries of a map. -/
def MessagePlan.entryCode (plan : MessagePlan) : List Code :=
  match plan.fields with
  | key :: value :: _ =>
    WireCodec.entryCode (typeIdentifier plan.name) ⟨keyField, key⟩ ⟨valueField, value⟩
  | _ => []

/-- The code of a message of either kind. -/
def MessagePlan.anyCode (plan : MessagePlan) (set : PlanSet) (mode : DeriveMode) : List Code :=
  if plan.synthetic then plan.entryCode else plan.code set mode

/-- The lines at the head of the source text. -/
def PlanSet.headCode (set : PlanSet) : List Code :=
  .line "// Code generated by protowirec. DO NOT EDIT." ::
    set.package.toList.map fun package => .line s!"// package: {package}"

/-- The code that the source text for a set of plans consists of. -/
def PlanSet.code (set : PlanSet) (mode : DeriveMode) : List Code :=
  set.headCode ++ (set.enums.flatMap fun table => .blank :: table.code mode) ++
    set.messages.flatMap fun plan => .blank :: plan.anyCode set mode

/-- The source text for a set of plans. -/
def PlanSet.source (set : PlanSet) (mode : DeriveMode) : String := Code.printAll 0 (set.code mode)

end WireCodec
