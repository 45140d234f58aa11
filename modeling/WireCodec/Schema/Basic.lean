/-! # Schemas

A schema declares enums and messages. Every part that a diagnostic may point
at carries the span of source text it came from; parts of a schema that is
built without source text have an empty span.
-/

namespace WireCodec

/-- A range of byte offsets in the UTF-8 form of a source text. -/
structure Span where
  start : Nat
  stop : Nat
deriving DecidableEq, Repr, Inhabited

/-- The span of what has no source text. -/
def Span.detached : Span := ⟨0, 0⟩

/-- The span from the start of one to the end of another. -/
def Span.to (first last : Span) : Span := ⟨first.start, last.stop⟩

/-- A node together with its place in the source text. -/
structure Spanned (α : Type) where
  node : α
  span : Span
deriving DecidableEq, Repr

def Spanned.detached {α : Type} (node : α) : Spanned α := ⟨node, .detached⟩

/-- How often a field may occur in a message. -/
inductive Cardinality where
  | required
  | optional
  | repeated
deriving DecidableEq, Repr

/-- The declared type of a field, by name. -/
inductive FieldType where
  | named (name : String)
  | map (key value : Spanned String)
deriving DecidableEq, Repr

/-- A field declaration. -/
structure Field where
  name : Spanned String
  type : Spanned FieldType
  number : Spanned UInt32
  cardinality : Cardinality
  packed : Option (Spanned Bool)
deriving DecidableEq, Repr

/-- A named number of an enum. -/
structure EnumValue where
  name : Spanned String
  number : Spanned Int32
deriving DecidableEq, Repr

/-- An enum declaration. -/
structure EnumDecl where
  name : Spanned String
  values : List (Spanned EnumValue)
deriving DecidableEq, Repr

/-- A message declaration. -/
structure MessageDecl where
  name : Spanned String
  fields : List (Spanned Field)
deriving DecidableEq, Repr

/-- The declarations of a schema, in source order. -/
structure Schema where
  package : Option (Spanned String)
  enums : List (Spanned EnumDecl)
  messages : List (Spanned MessageDecl)
deriving DecidableEq, Repr

/-- Whether a field is a map. -/
def Field.isMap (field : Field) : Bool :=
  match field.type.node with
  | .map _ _ => true
  | .named _ => false

/-- A field without source text. -/
def Field.ofName (name type : String) (number : UInt32) (cardinality : Cardinality) : Field :=
  ⟨.detached name, .detached (.named type), .detached number, cardinality, none⟩

/-- A map field without source text. -/
def Field.ofMap (name key value : String) (number : UInt32) : Field :=
  ⟨.detached name, .detached (.map (.detached key) (.detached value)), .detached number, .repeated,
    none⟩

namespace Schema

def empty : Schema := ⟨none, [], []⟩

/-- Adds an enum without source text. -/
def withEnum (schema : Schema) (name : String) (values : List (String × Int32)) : Schema :=
  let declared := values.map fun (value, number) =>
    Spanned.detached (EnumValue.mk (.detached value) (.detached number))
  { schema with enums := schema.enums ++ [.detached ⟨.detached name, declared⟩] }

/-- Adds a message without source text. -/
def withMessage (schema : Schema) (name : String) (fields : List Field) : Schema :=
  { schema with
    messages := schema.messages ++ [.detached ⟨.detached name, fields.map .detached⟩] }

/-- The first message of a name. -/
def message? (schema : Schema) (name : String) : Option MessageDecl :=
  (schema.messages.find? (·.node.name.node == name)).map (·.node)

/-- The first enum of a name. -/
def enum? (schema : Schema) (name : String) : Option EnumDecl :=
  (schema.enums.find? (·.node.name.node == name)).map (·.node)

end Schema

end WireCodec
