import WireCodec.Schema.ValueType

/-! # Encode errors

The ways in which a value can fail to fit the plan it is encoded with.
-/

namespace WireCodec

/-- What a place in a message has room for. -/
inductive Shape where
  | scalar (type : ScalarType)
  | symbolOf (enum : String)
  | messageOf (name : String)
  | list
  | map
deriving DecidableEq, Repr

/-- The wording of a shape. -/
def Shape.text : Shape → String
  | scalar type => type.name
  | symbolOf enum => s!"a symbol of enum `{enum}`"
  | messageOf name => s!"a `{name}` message"
  | list => "a list"
  | map => "a map"

/-- Why a value cannot be encoded. -/
inductive EncodeError where
  | unknownField (message field : String)
  | typeMismatch (field : String) (expected : Shape) (found : String)
  | unknownEnumSymbol (field enum symbol : String)
  /-- A plan mentions a message, an enum or a field that does not exist. -/
  | danglingReference (name : String)
deriving DecidableEq, Repr

/-- The wording of an encode error. -/
def EncodeError.message : EncodeError → String
  | unknownField message field => s!"message `{message}` has no field `{field}`"
  | typeMismatch field expected found => s!"field `{field}` expects {expected.text}, got {found}"
  | unknownEnumSymbol field enum symbol =>
    s!"field `{field}`: `{symbol}` is not a value of enum `{enum}`"
  | danglingReference name => s!"dangling reference to `{name}`"

end WireCodec
