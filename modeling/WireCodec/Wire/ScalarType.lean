import WireCodec.Bytes
import WireCodec.Floating.Format
import WireCodec.Wire.WireType

/-! # Scalar types

The fifteen scalar types of a schema, with the wire type of each and the type
of its values. Several scalar types share one type of values and differ only
in their wire form.
-/

namespace WireCodec

/-- A scalar type. -/
inductive ScalarType where
  | double
  | float
  | int32
  | int64
  | uint32
  | uint64
  | sint32
  | sint64
  | fixed32
  | fixed64
  | sfixed32
  | sfixed64
  | bool
  | string
  | bytes
deriving DecidableEq, Repr

namespace ScalarType

/-- All scalar types, in the order in which a name is looked up. -/
def all : List ScalarType :=
  [double, float, int32, int64, uint32, uint64, sint32, sint64, fixed32, fixed64, sfixed32,
    sfixed64, bool, string, bytes]

/-- The keyword of a scalar type. -/
def name : ScalarType → String
  | double => "double"
  | float => "float"
  | int32 => "int32"
  | int64 => "int64"
  | uint32 => "uint32"
  | uint64 => "uint64"
  | sint32 => "sint32"
  | sint64 => "sint64"
  | fixed32 => "fixed32"
  | fixed64 => "fixed64"
  | sfixed32 => "sfixed32"
  | sfixed64 => "sfixed64"
  | bool => "bool"
  | string => "string"
  | bytes => "bytes"

/-- The scalar type a keyword names. -/
def ofName? (keyword : String) : Option ScalarType := all.find? (·.name == keyword)

def wireType : ScalarType → WireType
  | bool | int32 | int64 | uint32 | uint64 | sint32 | sint64 => .varint
  | fixed64 | sfixed64 | double => .fixed64
  | string | bytes => .lengthDelimited
  | fixed32 | sfixed32 | float => .fixed32

/-- Whether several values may stand together in one packed run. -/
def packable : ScalarType → Bool
  | string | bytes => false
  | _ => true

/-- Whether a map may have keys of this type. -/
def isMapKey : ScalarType → Bool
  | double | float | bytes => false
  | _ => true

/-- The type of the values of a scalar type. -/
abbrev Carrier : ScalarType → Type
  | double => Binary64
  | float => Binary32
  | int32 | sint32 | sfixed32 => Int32
  | int64 | sint64 | sfixed64 => Int64
  | uint32 | fixed32 => UInt32
  | uint64 | fixed64 => UInt64
  | bool => Bool
  | string => String
  | bytes => Bytes

end ScalarType

/-! ## Primitive values

The values that are written and read in one piece: single bytes, unsigned
varints, and the scalars of a schema.
-/

/-- A type of primitive values. -/
inductive Primitive where
  | byte
  | varint32
  | varint64
  | scalar (type : ScalarType)
deriving DecidableEq, Repr

/-- The values of a primitive type. -/
abbrev Primitive.Carrier : Primitive → Type
  | byte => UInt8
  | varint32 => UInt32
  | varint64 => UInt64
  | scalar type => type.Carrier

end WireCodec
