import WireCodec.Schema.ValueType

/-! # Errors of JSON input

The ways in which a JSON value can fail to describe a message.
-/

namespace WireCodec

/-- What a JSON value has to be. -/
inductive JsonExpectation where
  | scalar (type : ScalarType)
  | symbolOf (enum : String)
  | numberOf (enum : String)
  | objectOf (message : String)
  | array
  | object
  /-- No value will do: the entries of the field have no key or no value. -/
  | map
  | keys (type : ValueType)
deriving DecidableEq, Repr

/-- The wording of an expectation. -/
def JsonExpectation.text : JsonExpectation → String
  | scalar .bytes => "base64 bytes"
  | scalar type => type.name
  | symbolOf enum => s!"a symbol of enum `{enum}`"
  | numberOf enum => s!"a value of enum `{enum}`"
  | objectOf message => s!"a `{message}` object"
  | array => "an array"
  | object => "an object"
  | map => "a map"
  | keys (.scalar type) => s!"{type.name} map keys"
  | keys _ => "a scalar map key"

/-- Why a JSON value describes no message. -/
inductive JsonError where
  | unknownMessage (name : String)
  | unknownField (message field : String)
  | invalid (field : String) (expected : JsonExpectation)
deriving DecidableEq, Repr

/-- The wording of an error. -/
def JsonError.message : JsonError → String
  | unknownMessage name => s!"unknown message type `{name}`"
  | unknownField message field => s!"message `{message}` has no field `{field}`"
  | invalid field expected => s!"field `{field}`: expected {expected.text}"

end WireCodec
