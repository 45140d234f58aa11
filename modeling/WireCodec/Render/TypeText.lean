import WireCodec.Plan.Basic
import WireCodec.Render.Identifier

/-! # Types in generated code

The types that hold the values of a schema in generated code, and the names
under which its library reads and writes them.
-/

namespace WireCodec

/-- The type of a scalar. -/
def ScalarType.typeText : ScalarType → String
  | double => "f64"
  | float => "f32"
  | int32 | sint32 | sfixed32 => "i32"
  | int64 | sint64 | sfixed64 => "i64"
  | uint32 | fixed32 => "u32"
  | uint64 | fixed64 => "u64"
  | bool => "bool"
  | string => "String"
  | bytes => "Vec<u8>"

/-- The type of a single value. -/
def ValueType.typeText : ValueType → String
  | scalar type => type.typeText
  | enum name => typeIdentifier name
  | message name => typeIdentifier name

/-- The name of a wire type as a constant. -/
def WireType.constantName : WireType → String
  | varint => "VARINT"
  | fixed64 => "FIXED64"
  | lengthDelimited => "LENGTH_DELIMITED"
  | fixed32 => "FIXED32"

/-- The constant of a wire type, with its path. -/
def WireType.constantText (type : WireType) : String := "protowire::wire::" ++ type.constantName

/-- The type of a field that holds a number of values. -/
def FieldPlan.plainTypeText (field : FieldPlan) : String :=
  let element := field.type.typeText
  match field.cardinality, field.type with
  | .repeated, _ => s!"Vec<{element}>"
  | _, .message _ => s!"Option<Box<{element}>>"
  | _, _ => s!"Option<{element}>"

/-- The key and the value field of the entries of a map. -/
def PlanSet.entryFields? (set : PlanSet) (entry : String) : Option (FieldPlan × FieldPlan) :=
  match set.message? entry with
  | some ⟨_, _, key :: value :: _, _, _, _⟩ => some (key, value)
  | _ => none

/-- The type of a field. -/
def FieldPlan.typeText (set : PlanSet) (field : FieldPlan) : String :=
  match field.isMapEntry, field.type with
  | true, .message entry =>
    match set.entryFields? entry with
    | some (key, value) =>
      s!"::std::collections::HashMap<{key.type.typeText}, {value.type.typeText}>"
    | none => field.plainTypeText
  | _, _ => field.plainTypeText

end WireCodec
