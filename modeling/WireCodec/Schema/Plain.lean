import WireCodec.Schema.Basic
import WireCodec.Schema.EntryName

/-! # Plain messages

Messages without map fields. Each map field becomes a repeated field of an
entry message, which is added behind the message that has the field.
-/

namespace WireCodec

/-- A field whose type is a name. -/
structure PlainField where
  name : String
  number : UInt32
  type : Spanned String
  cardinality : Cardinality
  packed : Option Bool
  isMapEntry : Bool
deriving DecidableEq, Repr

/-- A message, declared or made for the entries of a map. -/
structure PlainMessage where
  name : String
  synthetic : Bool
  fields : List PlainField
deriving DecidableEq, Repr

/-- A field of an entry message. -/
def PlainField.ofEntry (name : String) (number : UInt32) (type : Spanned String) : PlainField :=
  ⟨name, number, type, .required, none, false⟩

/-- The entry message of a map from keys to values. -/
def PlainMessage.ofMap (name : String) (key value : Spanned String) : PlainMessage :=
  ⟨name, true, [.ofEntry keyField 1 key, .ofEntry valueField 2 value]⟩

/-- The field that a field declaration becomes. -/
def Field.plain (message : String) (field : Field) : PlainField :=
  let packed := field.packed.map (·.node)
  match field.type.node with
  | .named type =>
    ⟨field.name.node, field.number.node, ⟨type, field.type.span⟩, field.cardinality, packed, false⟩
  | .map _ _ =>
    ⟨field.name.node, field.number.node, ⟨entryName message field.name.node, field.type.span⟩,
      .repeated, packed, true⟩

/-- The entry message that a field declaration needs, if it is a map. -/
def Field.entry? (message : String) (field : Field) : Option PlainMessage :=
  match field.type.node with
  | .named _ => none
  | .map key value => some (.ofMap (entryName message field.name.node) key value)

/-- A declared message and its entry messages. -/
def MessageDecl.plain (decl : MessageDecl) : List PlainMessage :=
  let name := decl.name.node
  ⟨name, false, decl.fields.map (·.node.plain name)⟩ :: decl.fields.filterMap (·.node.entry? name)

/-- The messages of a schema, without map fields. -/
def Schema.plain (schema : Schema) : List PlainMessage :=
  schema.messages.flatMap (·.node.plain)

end WireCodec
