import WireCodec.Value.Sorted
import WireCodec.Wire.ScalarType

/-! # Values

Values of messages whose schema is known only when the program runs. A
message is an association of field names to values and a map one of keys to
values, both in increasing order.
-/

namespace WireCodec

/-- A value of a field. -/
inductive Value where
  | bool (b : Bool)
  | int32 (n : Int32)
  | int64 (n : Int64)
  | uint32 (n : UInt32)
  | uint64 (n : UInt64)
  | float (x : Binary32)
  | double (x : Binary64)
  | string (s : String)
  | bytes (b : Bytes)
  | enum (symbol : String)
  | message (fields : List (String × Value))
  | list (items : List Value)
  | map (entries : List (MapKey × Value))
deriving Repr

/-- The fields of a message, in order of their names. -/
abbrev Record := List (String × Value)

namespace Value

/-- The kind of a value, as error texts name it. -/
def kind : Value → String
  | bool _ => "bool"
  | int32 _ => "i32"
  | int64 _ => "i64"
  | uint32 _ => "u32"
  | uint64 _ => "u64"
  | float _ => "f32"
  | double _ => "f64"
  | string _ => "string"
  | bytes _ => "bytes"
  | enum _ => "enum symbol"
  | message _ => "message"
  | list _ => "list"
  | map _ => "map"

/-- A scalar as a value. -/
def ofScalar : (type : ScalarType) → type.Carrier → Value
  | .double, x => double x
  | .float, x => float x
  | .int32, x | .sint32, x | .sfixed32, x => int32 x
  | .int64, x | .sint64, x | .sfixed64, x => int64 x
  | .uint32, x | .fixed32, x => uint32 x
  | .uint64, x | .fixed64, x => uint64 x
  | .bool, x => bool x
  | .string, x => string x
  | .bytes, x => bytes x

/-- The scalar of the given type that a value is, if it is one. -/
def toScalar? : (type : ScalarType) → Value → Option type.Carrier
  | .double, double x => some x
  | .float, float x => some x
  | .int32, int32 x => some x
  | .sint32, int32 x => some x
  | .sfixed32, int32 x => some x
  | .int64, int64 x => some x
  | .sint64, int64 x => some x
  | .sfixed64, int64 x => some x
  | .uint32, uint32 x => some x
  | .fixed32, uint32 x => some x
  | .uint64, uint64 x => some x
  | .fixed64, uint64 x => some x
  | .bool, bool x => some x
  | .string, string x => some x
  | .bytes, bytes x => some x
  | _, _ => none

/-- A map key as a value. -/
def ofMapKey : MapKey → Value
  | .bool b => bool b
  | .int32 n => int32 n
  | .int64 n => int64 n
  | .uint32 n => uint32 n
  | .uint64 n => uint64 n
  | .string s => string s

/-- The map key that a value is, if it is of a kind that keys have. -/
def toMapKey? : Value → Option MapKey
  | bool b => some (.bool b)
  | int32 n => some (.int32 n)
  | int64 n => some (.int64 n)
  | uint32 n => some (.uint32 n)
  | uint64 n => some (.uint64 n)
  | string s => some (.string s)
  | _ => none

theorem toMapKey?_ofMapKey (key : MapKey) : (ofMapKey key).toMapKey? = some key := by
  cases key <;> rfl

theorem ofMapKey_inj {key key' : MapKey} :
    ofMapKey key = .ofMapKey key' ↔ key = key' := by
  constructor
  · intro h
    have hkey := congrArg toMapKey? h
    rw [toMapKey?_ofMapKey, toMapKey?_ofMapKey] at hkey
    exact Option.some.inj hkey
  · rintro rfl
    rfl

theorem toScalar?_ofScalar (type : ScalarType) (x : type.Carrier) :
    (ofScalar type x).toScalar? type = some x := by
  cases type <;> rfl

end Value

namespace Record

/-- The value of a field. -/
def value? (record : Record) (name : String) : Option Value := Sorted.find? name record

def contains (record : Record) (name : String) : Bool := (value? record name).isSome

/-- Gives a field a value. -/
def assign (record : Record) (name : String) (value : Value) : Record :=
  Sorted.insert name value record

/-- Takes a field away. -/
def remove (record : Record) (name : String) : Record := Sorted.erase name record

/-- Appends an element to a list field. A field that is absent, or no list,
becomes a list of that element. -/
def appendItem (record : Record) (name : String) (item : Value) : Record :=
  match value? record name with
  | some (.list items) => assign record name (.list (items ++ [item]))
  | _ => assign record name (.list [item])

/-- Puts an entry into a map field. A field that is absent, or no map,
becomes a map of that entry. -/
def putEntry (record : Record) (name : String) (key : MapKey) (value : Value) : Record :=
  match value? record name with
  | some (.map entries) => assign record name (.map (Sorted.insert key value entries))
  | _ => assign record name (.map [(key, value)])

end Record

/-- One thing that can be done with a message value. -/
inductive RecordOp where
  | assign (name : String) (value : Value)
  | appendItem (name : String) (item : Value)
  | putEntry (name : String) (key : MapKey) (value : Value)
  | get (name : String)
  | remove (name : String)
  | contains (name : String)

/-- What an operation on a message value answers. -/
inductive RecordAnswer where
  | nothing
  | value (found : Option Value)
  | removed (found : Option Value)
  | truth (b : Bool)

namespace RecordOp

/-- The answer of an operation and the message value after it. -/
def apply (record : Record) : RecordOp → RecordAnswer × Record
  | assign name value => (.nothing, Record.assign record name value)
  | appendItem name item => (.nothing, Record.appendItem record name item)
  | putEntry name key value => (.nothing, Record.putEntry record name key value)
  | get name => (.value (Record.value? record name), record)
  | remove name => (.removed (Record.value? record name), Record.remove record name)
  | contains name => (.truth (Record.contains record name), record)

/-- The answers of a sequence of operations, each with the message value
after it. -/
def history (record : Record) : List RecordOp → List (RecordAnswer × Record)
  | [] => []
  | op :: rest =>
    let next := op.apply record
    next :: history next.2 rest

end RecordOp

end WireCodec
