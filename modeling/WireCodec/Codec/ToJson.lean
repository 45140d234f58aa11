import WireCodec.Codec.JsonError
import WireCodec.Floating.NonFinite
import WireCodec.Json.Basic
import WireCodec.Plan.Basic
import WireCodec.Schema.EntryName
import WireCodec.Text.Base64
import WireCodec.Value.Basic

/-! # Message values as JSON

A message becomes an object, a list an array, and a map an object whose names
are the texts of its keys. Byte strings are written in base 64, and doubles
that are not finite as words. Fields that a message does not have are left
out; where no plan is known for a message all of its fields are written.
-/

namespace WireCodec

/-- The last field of a name. -/
def MessagePlan.lastField? (plan : MessagePlan) (name : String) : Option FieldPlan :=
  plan.fields.reverse.find? (·.name == name)

variable (set : PlanSet)

/-- The type of the single values of a field: for a map that of its values. -/
def FieldPlan.elementType? (field : FieldPlan) : Option ValueType :=
  match field.isMapEntry, field.type with
  | true, .message entry => do
    let plan ← set.message? entry
    let value ← plan.field? valueField
    return value.type
  | _, type => some type

/-- The plan for messages of a type. -/
def PlanSet.nested? : Option ValueType → Option MessagePlan
  | some (.message name) => set.message? name
  | _ => none

/-- A double as JSON. -/
def Json.ofDouble (x : Binary64) : Json :=
  if x.isFinite then .number (.double x) else .string x.word

variable [Base64Engine]

mutual

/-- A value of a type as JSON. The items of a list and the values of a map
have a type of their own. -/
def Value.toJson (type items : Option ValueType) : Value → Json
  | .bool b => .bool b
  | .int32 n => .number (.ofInt64 n.toInt64)
  | .int64 n => .number (.ofInt64 n)
  | .uint32 n => .number (.unsigned n.toUInt64)
  | .uint64 n => .number (.unsigned n)
  | .float x => .ofDouble x.widen
  | .double x => .ofDouble x
  | .string s => .string s
  | .bytes b => .string (Base64Engine.encode b)
  | .enum symbol => .string symbol
  | .message fields =>
    match set.nested? type with
    | some plan => .object (plannedMembers plan fields)
    | none => .object (plainMembers fields)
  | .list values => .array (arrayItems items values)
  | .map entries => .object (Sorted.ofList (entryMembers items entries))

/-- The fields of a message that a plan has, as members of an object. -/
def plannedMembers (plan : MessagePlan) : List (String × Value) → List (String × Json)
  | [] => []
  | (name, value) :: rest =>
    match plan.lastField? name with
    | some field =>
      let type := field.elementType? set
      (name, value.toJson type type) :: plannedMembers plan rest
    | none => plannedMembers plan rest

/-- All fields of a message, as members of an object. -/
def plainMembers : List (String × Value) → List (String × Json)
  | [] => []
  | (name, value) :: rest => (name, value.toJson none none) :: plainMembers rest

/-- The items of a list, as items of an array. -/
def arrayItems (type : Option ValueType) : List Value → List Json
  | [] => []
  | value :: rest => value.toJson type none :: arrayItems type rest

/-- The entries of a map, as members of an object. -/
def entryMembers (type : Option ValueType) : List (MapKey × Value) → List (String × Json)
  | [] => []
  | (key, value) :: rest => (key.text, value.toJson type none) :: entryMembers type rest

end

/-- A message value as JSON, by the plan of a name. -/
def PlanSet.toJson (message : String) (record : Record) : Except JsonError Json :=
  match set.message? message with
  | some plan => .ok (.object (plannedMembers set plan record))
  | none => .error (.unknownMessage message)

end WireCodec
