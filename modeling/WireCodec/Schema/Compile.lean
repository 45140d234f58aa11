import WireCodec.Schema.EntryName
import WireCodec.Schema.Parser
import WireCodec.Schema.ValueType

/-! # Checking and compiling

A schema is refused when a type name stands for nothing, a map key has no key
type, the packed option is misplaced, or an entry message would get a name
that is taken. All faults are reported: those of the fields first, in source
order, and those of the entry names after them. A source text compiles to a
schema when it can be parsed and the schema passes the check.
-/

namespace WireCodec

/-- The error of a computation as a list. -/
def errorsOf {ε α : Type} : Except ε α → List ε
  | .ok _ => []
  | .error e => [e]

/-- What is wrong with the key type of a map. -/
def checkMapKey (index : TypeIndex) (key : Spanned String) : List CheckError :=
  match index.resolve key.node key.span with
  | .ok (.scalar type) => if type.isMapKey then [] else [.invalidMapKey key]
  | .ok _ => [.invalidMapKey key]
  | .error e => [e]

/-- What is wrong with the type of a field. -/
def checkType (index : TypeIndex) (field : Field) : List CheckError :=
  match field.type.node with
  | .named name => errorsOf (index.resolve name field.type.span)
  | .map key value => checkMapKey index key ++ errorsOf (index.resolve value.node value.span)

/-- What is wrong with the packed option of a field. A type that stands for
nothing was reported with the type. -/
def checkPacked (index : TypeIndex) (message : String) (field : Field) : List CheckError :=
  match field.packed with
  | some ⟨true, option⟩ =>
    match field.type.node with
    | .map _ _ => [.packedMap message field.name.node option]
    | .named name =>
      if field.cardinality ≠ .repeated then [.packedSingular message field.name.node option]
      else
        match index.find? name with
        | some type =>
          if type.packable then []
          else [.packedUnpackable message field.name.node field.type.span option]
        | none => []
  | _ => []

/-- What is wrong with a field. -/
def checkField (index : TypeIndex) (message : String) (field : Field) : List CheckError :=
  checkType index field ++ checkPacked index message field

/-- Names that are taken, each with the place where it was taken first. -/
abbrev TakenNames := List (String × Span)

/-- The names that declarations take. -/
def Schema.declaredNames (schema : Schema) : TakenNames :=
  (schema.messages.map (·.node.name) ++ schema.enums.map (·.node.name)).map
    fun name => (name.node, name.span)

/-- The map fields of a schema, each with the name of its message. -/
def Schema.mapFields (schema : Schema) : List (String × Spanned String) :=
  schema.messages.flatMap fun message =>
    (message.node.fields.filter (·.node.isMap)).map
      fun field => (message.node.name.node, field.node.name)

/-- What is wrong with the entry names of map fields, given the names that
are taken before. -/
def checkEntryNames (taken : TakenNames) : List (String × Spanned String) → List CheckError
  | [] => []
  | (message, field) :: rest =>
    let entry := flatName (entryName message field.node)
    match taken.find? (·.1 == entry) with
    | some (_, previous) =>
      .entryNameTaken message field entry previous :: checkEntryNames taken rest
    | none => checkEntryNames (taken ++ [(entry, field.span)]) rest

/-- Everything that is wrong with a schema. -/
def Schema.check (schema : Schema) : List CheckError :=
  let index := TypeIndex.ofSchema schema
  (schema.messages.flatMap fun message =>
      message.node.fields.flatMap fun field =>
        checkField index message.node.name.node field.node) ++
    checkEntryNames schema.declaredNames schema.mapFields

/-- The schema of a source text, or everything that is wrong with it. -/
def compile (source : String) : Except (List CompileError) Schema :=
  match parse source with
  | .error e => .error [.text e]
  | .ok schema =>
    match schema.check with
    | [] => .ok schema
    | errors => .error (errors.map .check)

end WireCodec
