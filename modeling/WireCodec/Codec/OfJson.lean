import WireCodec.Codec.JsonError
import WireCodec.Floating.NonFinite
import WireCodec.Json.Basic
import WireCodec.Plan.Basic
import WireCodec.Schema.EntryName
import WireCodec.Text.Base64
import WireCodec.Text.Decimal
import WireCodec.Value.Basic

/-! # Message values from JSON

An object describes a message by its members, of which those with the value
null count as absent. Integers may be written as texts, enum values as
numbers, and doubles that are not finite only as texts. Of several names in
one object that stand for the same map key the last one counts.
-/

namespace WireCodec

namespace Json

/-- The signed integer that a value stands for. -/
def toInt? : Json → Option Int
  | number n => n.toInt64?.map (·.toInt)
  | string s => Text.Decimal.int? s
  | _ => none

/-- The unsigned integer that a value stands for. -/
def toNat? : Json → Option Nat
  | number n => n.toUInt64?.map (·.toNat)
  | string s => Text.Decimal.nat? s
  | _ => none

/-- The double that a value stands for. -/
def toDouble? : Json → Option Binary64
  | number n => some n.toDouble
  | string s => Binary64.ofNonFinite? s
  | _ => none

/-- The text that a value is. -/
def toText? : Json → Option String
  | string s => some s
  | _ => none

/-- The truth value that a value is. -/
def toBool? : Json → Option Bool
  | bool b => some b
  | _ => none

/-- The scalar of a type that a value stands for. -/
def toScalar? [Base64Engine] (json : Json) : (type : ScalarType) → Option type.Carrier
  | .double => json.toDouble?
  | .float => json.toDouble?.map (·.narrow)
  | .int32 | .sint32 | .sfixed32 => json.toInt?.bind int32?
  | .int64 | .sint64 | .sfixed64 => json.toInt?.bind int64?
  | .uint32 | .fixed32 => json.toNat?.bind uint32?
  | .uint64 | .fixed64 => json.toNat?.bind uint64?
  | .bool => json.toBool?
  | .string => json.toText?
  | .bytes => json.toText?.bind Base64Engine.decode?

end Json

/-- The map key of a type that a text stands for. -/
def MapKey.ofText? (type : ValueType) (text : String) : Option MapKey :=
  match type with
  | .scalar .bool =>
    if text = "true" then some (.bool true)
    else if text = "false" then some (.bool false)
    else none
  | .scalar .int32 | .scalar .sint32 | .scalar .sfixed32 =>
    ((Text.Decimal.int? text).bind int32?).map .int32
  | .scalar .int64 | .scalar .sint64 | .scalar .sfixed64 =>
    ((Text.Decimal.int? text).bind int64?).map .int64
  | .scalar .uint32 | .scalar .fixed32 => ((Text.Decimal.nat? text).bind uint32?).map .uint32
  | .scalar .uint64 | .scalar .fixed64 => ((Text.Decimal.nat? text).bind uint64?).map .uint64
  | .scalar .string => some (.string text)
  | _ => none

/-- What a field has room for: a value, a list of values, or a map whose
entries are of a type. -/
inductive FieldRoom where
  | single (type : ValueType)
  | list (type : ValueType)
  | map (entry : ValueType)
deriving DecidableEq, Repr

/-- The JSON value that a field needs. -/
def FieldRoom.expected : FieldRoom → JsonExpectation
  | single (.scalar type) => .scalar type
  | single (.enum name) => .symbolOf name
  | single (.message name) => .objectOf name
  | list _ => .array
  | map _ => .object

/-- What a field has room for. -/
def FieldPlan.room (field : FieldPlan) : FieldRoom :=
  if field.isMapEntry then .map field.type
  else if field.cardinality = .repeated then .list field.type
  else .single field.type

variable (set : PlanSet)

/-- The plan for the messages that a field holds. -/
def PlanSet.nestedPlan (name : String) : Except JsonError MessagePlan :=
  match set.message? name with
  | some plan => .ok plan
  | none => .error (.unknownMessage name)

/-- The types of the keys and of the values of a map field with entries of a
type. -/
def PlanSet.entryTypes (field : String) :
    ValueType → Except JsonError (ValueType × ValueType)
  | .message entry => do
    let plan ← set.nestedPlan entry
    match plan.field? keyField, plan.field? valueField with
    | some key, some value => return (key.type, value.type)
    | _, _ => throw (.invalid field .map)
  | _ => throw (.invalid field .map)

/-- The error for a JSON value of a kind that a field has no room for. -/
def FieldRoom.refusal (room : FieldRoom) (field : String) : JsonError :=
  match room with
  | single (.message name) =>
    match set.message? name with
    | some _ => .invalid field room.expected
    | none => .unknownMessage name
  | _ => .invalid field room.expected

variable [Base64Engine]

/-- The value of a number, a text or a word in a field. -/
def leafOfJson (field : String) (room : FieldRoom) (json : Json) : Except JsonError Value :=
  match room, json with
  | .single (.scalar type), json =>
    match json.toScalar? type with
    | some x => .ok (.ofScalar type x)
    | none => .error (.invalid field (.scalar type))
  | .single (.enum _), .string symbol => .ok (.enum symbol)
  | .single (.enum name), .number n =>
    let number := (n.toInt64?.map (·.toInt)).bind int32?
    match number.bind fun number => (set.enum? name).bind (·.symbol? number) with
    | some symbol => .ok (.enum symbol)
    | none => .error (.invalid field (.numberOf name))
  | room, _ => .error (room.refusal set field)

mutual

/-- The value that a JSON value describes in a field. -/
def Json.toValue (field : String) (room : FieldRoom) : Json → Except JsonError Value
  | .object members =>
    match room with
    | .map entry => do
      let (key, value) ← set.entryTypes field entry
      return .map (Sorted.ofList (← entriesOfJson field key value members))
    | .single (.message name) => do
      let plan ← set.nestedPlan name
      return .message (← fieldsOfJson plan members)
    | room => .error (room.refusal set field)
  | .array items =>
    match room with
    | .list type => .list <$> itemsOfJson field type items
    | room => .error (room.refusal set field)
  | json => leafOfJson set field room json

/-- The entries that the members of an object describe. -/
def entriesOfJson (field : String) (keyType valueType : ValueType) :
    List (String × Json) → Except JsonError (List (MapKey × Value))
  | [] => .ok []
  | (name, json) :: rest =>
    match MapKey.ofText? keyType name with
    | none => .error (.invalid field (.keys keyType))
    | some key => do
      let value ← json.toValue field (.single valueType)
      return (key, value) :: (← entriesOfJson field keyType valueType rest)

/-- The list that the items of an array describe. -/
def itemsOfJson (field : String) (type : ValueType) :
    List Json → Except JsonError (List Value)
  | [] => .ok []
  | json :: rest => do
    let value ← json.toValue field (.single type)
    return value :: (← itemsOfJson field type rest)

/-- The fields that the members of an object describe. -/
def fieldsOfJson (plan : MessagePlan) : List (String × Json) → Except JsonError Record
  | [] => .ok []
  | (name, json) :: rest =>
    match plan.field? name with
    | none => .error (.unknownField plan.name name)
    | some field =>
      match json with
      | .null => fieldsOfJson plan rest
      | json => do
        let value ← json.toValue name field.room
        return (name, value) :: (← fieldsOfJson plan rest)

end

/-- The message value that a JSON value describes, by the declared plan of a
name. -/
def PlanSet.ofJson (message : String) (json : Json) : Except JsonError Record :=
  match set.declared? message, json with
  | none, _ => .error (.unknownMessage message)
  | some plan, .object members => fieldsOfJson set plan members
  | some plan, _ => .error (.invalid message (.objectOf plan.name))

end WireCodec
