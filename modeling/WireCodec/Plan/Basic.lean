import WireCodec.Schema.EnumTable
import WireCodec.Schema.ValueType

/-! # Codec plans

A plan says, message by message, which steps encode a value and what to do
with each field number that decoding meets. Plans refer to one another by
name, and to the fields of their message by index.
-/

namespace WireCodec

/-- A field number and the wire type of the values that are written with it. -/
structure Tag where
  number : UInt32
  wireType : WireType
deriving DecidableEq, Repr

/-- The key that a tag is written as. -/
def Tag.key (tag : Tag) : Key := ⟨tag.number, tag.wireType.code⟩

/-- A field of a message plan. -/
structure FieldPlan where
  name : String
  number : UInt32
  cardinality : Cardinality
  type : ValueType
  packed : Bool
  isMapEntry : Bool
deriving DecidableEq, Repr

/-- The form in which a field is written. -/
inductive EncodeForm where
  /-- One occurrence for one value. -/
  | single
  /-- One occurrence for each element of a list. -/
  | each
  /-- One run for all elements of a list. -/
  | packed
  /-- One entry message for each entry of a map. -/
  | mapEntries (entry : String)
deriving DecidableEq, Repr

/-- A step of encoding: the field with an index, under a tag, in a form. -/
structure EncodeStep where
  field : Nat
  tag : Tag
  form : EncodeForm
deriving DecidableEq, Repr

/-- What becomes of a value that is read. -/
inductive DecodeAction where
  /-- It replaces the value of the field. -/
  | assign
  /-- It is appended to the list of the field. -/
  | append
  /-- It, or each element of a run, is appended to the list of the field. -/
  | appendPackable (natural : WireType)
  /-- It is an entry that is put into the map of the field. -/
  | mergeEntry (entry : String)
deriving DecidableEq, Repr

/-- How an occurrence of a field number is decoded. -/
structure DecodeArm where
  number : UInt32
  field : Nat
  wireType : WireType
  action : DecodeAction
deriving DecidableEq, Repr

/-- The plan for a message. -/
structure MessagePlan where
  name : String
  synthetic : Bool
  fields : List FieldPlan
  steps : List EncodeStep
  arms : List DecodeArm
  required : List Nat
deriving DecidableEq, Repr

namespace MessagePlan

/-- The first field of a name. -/
def field? (plan : MessagePlan) (name : String) : Option FieldPlan :=
  plan.fields.find? (·.name == name)

/-- The first arm for a field number. -/
def arm? (plan : MessagePlan) (number : UInt32) : Option DecodeArm :=
  plan.arms.find? (·.number == number)

end MessagePlan

/-- The plans for all messages of a schema, and the tables of its enums. -/
structure PlanSet where
  package : Option String
  enums : List EnumTable
  messages : List MessagePlan
deriving Repr

namespace PlanSet

/-- The last plan of a name. -/
def message? (set : PlanSet) (name : String) : Option MessagePlan :=
  set.messages.reverse.find? (·.name == name)

/-- The last enum table of a name. -/
def enum? (set : PlanSet) (name : String) : Option EnumTable :=
  set.enums.reverse.find? (·.name == name)

/-- The plan of a name, unless it was made for map entries. -/
def declared? (set : PlanSet) (name : String) : Option MessagePlan :=
  (set.message? name).filter (!·.synthetic)

end PlanSet

end WireCodec
