import WireCodec.Schema.Diagnostic
import WireCodec.Wire.ScalarType

/-! # Types of values

What a type name of a schema stands for. A scalar keyword always means the
scalar, and a name declared both as an enum and as a message means the
message.
-/

namespace WireCodec

/-- The type of a single value. -/
inductive ValueType where
  | scalar (type : ScalarType)
  | enum (name : String)
  | message (name : String)
deriving DecidableEq, Repr

namespace ValueType

def wireType : ValueType → WireType
  | scalar type => type.wireType
  | enum _ => .varint
  | message _ => .lengthDelimited

/-- Whether several values may stand together in one packed run. -/
def packable : ValueType → Bool
  | scalar type => type.packable
  | enum _ => true
  | message _ => false

/-- A type as a schema names it. -/
def name : ValueType → String
  | scalar type => type.name
  | enum name => name
  | message name => name

end ValueType

/-- The names a type may be referred to by. -/
structure TypeIndex where
  messages : List String
  enums : List String
deriving Repr

namespace TypeIndex

/-- The names a schema declares. -/
def ofSchema (schema : Schema) : TypeIndex :=
  ⟨schema.messages.map (·.node.name.node), schema.enums.map (·.node.name.node)⟩

/-- Adds the name of a message. -/
def addMessage (index : TypeIndex) (name : String) : TypeIndex :=
  { index with messages := name :: index.messages }

/-- The type that a name stands for. -/
def find? (index : TypeIndex) (name : String) : Option ValueType :=
  match ScalarType.ofName? name with
  | some type => some (.scalar type)
  | none =>
    if index.messages.contains name then some (.message name)
    else if index.enums.contains name then some (.enum name)
    else none

/-- The type that a name at some place stands for. -/
def resolve (index : TypeIndex) (name : String) (span : Span) : Except CheckError ValueType :=
  match index.find? name with
  | some type => .ok type
  | none => .error (.undefinedType name span)

end TypeIndex

end WireCodec
